import Xzero.Http.RequestInfo

/-!
# The decoded path of a request

What a request URI says: the path is what stands before the first question mark, percent-decoded
(`percentDecode`), and the query what comes after it. `setUri` differs from that in three ways. An
escape whose first digit is a letter stands for another byte (`readByte_eq`); an escaped question
mark ends the path; and a question mark right after `/..` does not. **These are the only ways**: an
accepted URI is decoded as it should be exactly if none of them applies (`decoded_iff`).
-/

namespace Xzero.Http

open Escape List Option Util PathState

/-- The value of a hexadecimal digit. -/
def digit (c : UInt8) : Option UInt8 :=
  if '0'.toUInt8 ≤ c ∧ c ≤ '9'.toUInt8 then some (c - '0'.toUInt8)
  else if 'a'.toUInt8 ≤ c ∧ c ≤ 'f'.toUInt8 then some (c - 'a'.toUInt8 + 10)
  else if 'A'.toUInt8 ≤ c ∧ c ≤ 'F'.toUInt8 then some (c - 'A'.toUInt8 + 10)
  else none

/-- The byte that an escape denotes, other than 0. -/
def percentByte (a b : UInt8) : Option UInt8 :=
  (digit a).bind fun x ↦ (digit b).bind fun y ↦ if 16 * x + y = 0 then none else some (16 * x + y)

/-- Every escape replaced by the byte it denotes. -/
def percentDecode (u : Bytes) : Option Bytes := unescape '%'.toUInt8 percentByte u

/-- What stands before the first question mark. -/
def front (uri : Bytes) : Bytes := uri.takeWhile (· ≠ '?'.toUInt8)

/-- What comes after the first question marks. -/
def behind (uri : Bytes) : Bytes :=
  (uri.dropWhile (· ≠ '?'.toUInt8)).dropWhile (· = '?'.toUInt8)

/-! ### Digits -/

/-- The bits a first digit stands for. Letters are 20 less than they should be. -/
def high (x : UInt8) : UInt8 := if x < 10 then 16 * x else 16 * (x - 20)

theorem highDigit_eq (a : UInt8) : highDigit a = (digit a).map high := by
  revert a
  exact forall_uint8 (by decide +kernel)

theorem lowDigit_eq (d b : UInt8) : lowDigit d b = (digit b).map (d ||| ·) := by
  have hdigit : lowDigit 0 b = digit b := by
    revert b
    exact forall_uint8 (by decide +kernel)
  rw [← hdigit, lowDigit, lowDigit]
  split
  · simp
  · dsimp only
    split
    · simp
    · rfl

variable {c x : UInt8}

theorem digit_lt (h : digit c = some x) : x < 16 := by
  revert c x
  have hall : ∀ c : UInt8, ∀ x ∈ digit c, x < 16 := forall_uint8 (by decide +kernel)
  exact fun {c x} h ↦ hall c x h

theorem readByte_eq (a b : UInt8) : readByte a b = (digit a).bind fun x ↦ (digit b).bind fun y ↦
    if high x ||| y = 0 then none else some (high x ||| y) := by
  rw [readByte, highDigit_eq]
  cases digit a with
  | none => rfl
  | some x =>
    rw [map_some, bind_some, bind_some, lowDigit_eq]
    cases digit b <;> rfl

@[elab_as_elim]
theorem forall_digits {P : UInt8 → UInt8 → Prop}
    (h : ∀ m n : Fin 16, P (UInt8.ofNat m) (UInt8.ofNat n)) {y : UInt8} (hx : x < 16)
    (hy : y < 16) : P x y := by
  have hx' : x.toNat < 16 := hx
  have hy' : y.toNat < 16 := hy
  have hP := h ⟨x.toNat, hx'⟩ ⟨y.toNat, hy'⟩
  rwa [UInt8.ofNat_toNat, UInt8.ofNat_toNat] at hP

/-- The bytes that the loop tells from the others. -/
def special (c : UInt8) : Option UInt8 :=
  if c = '/'.toUInt8 ∨ c = '.'.toUInt8 ∨ c = '?'.toUInt8 then some c else none

theorem special_readByte (a b : UInt8) :
    (readByte a b).map special = (percentByte a b).map special := by
  rw [readByte_eq, percentByte]
  cases ha : digit a with
  | none => rfl
  | some x =>
    cases hb : digit b with
    | none => rfl
    | some y =>
      refine forall_digits ?_ (digit_lt ha) (digit_lt hb)
      decide +kernel

variable {a b : UInt8}

/-- An escape is decoded to the byte it denotes when its first digit is not a letter. -/
theorem readByte_eq_percentByte_iff (h : readByte a b = some x) :
    readByte a b = percentByte a b ↔ '0'.toUInt8 ≤ a ∧ a ≤ '9'.toUInt8 := by
  have hfirst : ∀ a : UInt8, ∀ x ∈ digit a, x < 10 ↔ '0'.toUInt8 ≤ a ∧ a ≤ '9'.toUInt8 :=
    forall_uint8 (by decide +kernel)
  rw [readByte_eq] at h ⊢
  rw [percentByte]
  obtain ⟨m, hm, h⟩ := bind_eq_some_iff.1 h
  obtain ⟨n, hn, -⟩ := bind_eq_some_iff.1 h
  rw [← hfirst a m hm, hm, hn]
  refine forall_digits ?_ (digit_lt hm) (digit_lt hn)
  decide +kernel

theorem readByte_eq_none (hc : digit c = none) (a : UInt8) :
    readByte a c = none ∧ readByte c a = none := by
  rw [readByte_eq, readByte_eq, hc]
  exact ⟨by cases digit a <;> rfl, rfl⟩

theorem percentByte_eq_none (hc : digit c = none) (a : UInt8) :
    percentByte a c = none ∧ percentByte c a = none := by
  rw [percentByte, percentByte, hc]
  exact ⟨by cases digit a <;> rfl, rfl⟩

/-! ### What is read, in parts -/

variable {p : Bytes}

theorem concat_suffix_concat {l : Bytes} : l ++ [a] <:+ p ++ [c] ↔ a = c ∧ l <:+ p := by
  rw [← reverse_prefix, reverse_concat, reverse_concat, cons_prefix_cons, reverse_prefix]

theorem next_eq_iff (state : PathState) (c : UInt8) : (state.next c = .slash ↔ c = '/'.toUInt8) ∧
    (state.next c = .dot ↔ c = '.'.toUInt8 ∧ state = .slash) ∧
    (state.next c = .dotDot ↔ c = '.'.toUInt8 ∧ state = .dot) := by
  by_cases hslash : c = '/'.toUInt8
  · subst hslash
    cases state <;> decide
  by_cases hdot : c = '.'.toUInt8
  · subst hdot
    cases state <;> decide
  · simp [PathState.next, hslash, hdot]

theorem after_eq_iff (p : Bytes) : (after p = .slash ↔ ['/'.toUInt8] <:+ p) ∧
    (after p = .dot ↔ ['/'.toUInt8, '.'.toUInt8] <:+ p) ∧
    (after p = .dotDot ↔ ['/'.toUInt8, '.'.toUInt8, '.'.toUInt8] <:+ p) := by
  induction p using reverseRecOn with
  | nil => decide
  | append_singleton p c ih =>
    obtain ⟨hslash, hdot, -⟩ := ih
    obtain ⟨h₁, h₂, h₃⟩ := next_eq_iff (.after p) c
    rw [after_concat, h₁, h₂, h₃, hslash, hdot]
    refine ⟨?_, ?_, ?_⟩
    · rw [← nil_append ['/'.toUInt8], concat_suffix_concat, eq_comm]
      exact (and_iff_left nil_suffix).symm
    · exact Iff.trans (and_congr_left' eq_comm) concat_suffix_concat.symm
    · exact Iff.trans (and_congr_left' eq_comm) concat_suffix_concat.symm

variable {u : Bytes}

theorem Walk.reads (h : Walk u p) : Reads '%'.toUInt8 readByte u p := by
  induction h with
  | nil => exact .nil
  | letter _ hc _ ih => exact ih.append (.cons hc .nil)
  | escape _ hx _ ih => exact ih.append (.escape hx .nil)

theorem mark_not_mem (hx : readByte a b = some x) : '?'.toUInt8 ∉ ['%'.toUInt8, a, b] := by
  simp only [mem_cons, not_mem_nil, or_false]
  rintro (h | rfl | rfl)
  · cases h
  · cases hx
  · rw [(readByte_eq_none rfl a).1] at hx
    cases hx

variable {v w : Bytes}

theorem Walk.of_escape (h : Walk u p)
    (hu : u = v ++ '%'.toUInt8 :: a :: b :: w) (hread : readByte a b = some '?'.toUInt8) :
    ∃ q, Walk v q ∧ after q = .dotDot := by
  have hdigit : a ≠ '%'.toUInt8 ∧ b ≠ '%'.toUInt8 := by
    constructor
    · rintro rfl
      cases hread
    · rintro rfl
      rw [(readByte_eq_none rfl a).1] at hread
      cases hread
  induction h generalizing w with
  | nil => exact absurd hu (by simp)
  | @letter u p c hwalk hc hmark ih =>
    rcases append_eq_append_iff.1 hu with ⟨l, rfl, heq⟩ | ⟨l, rfl, heq⟩
    · exact absurd (congrArg length heq) (by simp; omega)
    · rcases l with - | ⟨c₁, - | ⟨c₂, - | ⟨c₃, l⟩⟩⟩
      · cases heq
      · cases heq
      · -- the walk would stop within the escape
        obtain ⟨rfl, rfl, rfl, rfl⟩ := heq
        obtain ⟨p₁, p₂, -, h₂, -⟩ := hwalk.reads.cut (readByte_eq_none rfl)
        cases h₂ with
        | cons hne => exact absurd rfl hne
      · obtain ⟨rfl, rfl, rfl, rfl⟩ := heq
        exact ih rfl
  | @escape u p a' b' x hwalk hx hmark ih =>
    rcases append_eq_append_iff.1 hu with ⟨l, rfl, heq⟩ | ⟨l, rfl, heq⟩
    · rcases l with - | ⟨c, l⟩
      · obtain ⟨-, rfl, rfl, -⟩ := heq
        rw [hx] at hread
        rw [append_nil]
        exact ⟨p, hwalk, hmark (some.inj hread)⟩
      · exact absurd (congrArg length heq) (by simp; omega)
    · rcases l with - | ⟨c₁, - | ⟨c₂, - | ⟨c₃, l⟩⟩⟩
      · obtain ⟨-, rfl, rfl, -⟩ := heq
        rw [hx] at hread
        rw [append_nil] at hwalk
        exact ⟨p, hwalk, hmark (some.inj hread)⟩
      · simp only [cons_append, nil_append, cons.injEq] at heq
        exact absurd heq.2.1 hdigit.1
      · simp only [cons_append, nil_append, cons.injEq] at heq
        exact absurd heq.2.2.1 hdigit.2
      · obtain ⟨rfl, rfl, rfl, rfl⟩ := heq
        exact ih rfl

theorem Walk.of_letter (h : Walk u p)
    (hu : u = v ++ '?'.toUInt8 :: w) : ∃ q, Walk v q ∧ after q = .dotDot := by
  induction h generalizing w with
  | nil => exact absurd hu (by simp)
  | @letter u p c hwalk hc hmark ih =>
    rcases eq_nil_or_concat w with rfl | ⟨w, d, rfl⟩
    · obtain ⟨rfl, heq⟩ := append_inj' hu rfl
      exact ⟨p, hwalk, hmark (cons.inj heq).1⟩
    · rw [concat_eq_append, ← cons_append, ← append_assoc] at hu
      exact ih (append_inj' hu rfl).1
  | @escape u p a b x hwalk hx hmark ih =>
    have hnot : '?'.toUInt8 ∉ ['%'.toUInt8, a, b] := mark_not_mem hx
    rcases append_eq_append_iff.1 hu with ⟨l, rfl, heq⟩ | ⟨l, rfl, heq⟩
    · refine absurd ?_ hnot
      rw [heq]
      exact mem_append_right l mem_cons_self
    · rcases l with - | ⟨c, l⟩
      · refine absurd ?_ hnot
        rw [← nil_append ['%'.toUInt8, a, b], ← heq]
        exact mem_cons_self
      · rw [cons_append, cons.injEq] at heq
        exact ih (by rw [heq.1])

theorem Walk.exists_first (h : Walk u p) (hmem : '?'.toUInt8 ∈ u) :
    ∃ u₁ p₁ u₂, u = u₁ ++ '?'.toUInt8 :: u₂ ∧ '?'.toUInt8 ∉ u₁ ∧ Walk u₁ p₁ ∧
      after p₁ = .dotDot ∧ p₁.length < p.length := by
  obtain ⟨u₁, u₂, rfl, hnot⟩ := eq_append_cons_of_mem hmem
  obtain ⟨q, hq, hafter⟩ := h.of_letter rfl
  obtain ⟨p₁, p₂, h₁, h₂, rfl⟩ := h.reads.cut (readByte_eq_none rfl)
  obtain rfl := hq.reads.unique h₁
  refine ⟨u₁, q, u₂, rfl, hnot, hq, hafter, ?_⟩
  cases h₂ with
  | cons =>
    rw [length_append, length_cons]
    omega

theorem exists_percent (h : Reads '%'.toUInt8 readByte u p) :
    ∃ q, Reads '%'.toUInt8 percentByte u q ∧ p.map special = q.map special :=
  h.map special special_readByte

/-- No escape begins with a letter. -/
abbrev Numeric (u : Bytes) : Prop :=
  ∀ v a b w, u = v ++ '%'.toUInt8 :: a :: b :: w → '0'.toUInt8 ≤ a ∧ a ≤ '9'.toUInt8

theorem reads_eq_iff {q : Bytes} (hp : Reads '%'.toUInt8 readByte u p)
    (hq : Reads '%'.toUInt8 percentByte u q) : p = q ↔ Numeric u := by
  rw [hp.agree (readByte_eq_none rfl) (percentByte_eq_none rfl) hq]
  refine forall_congr' fun v ↦ forall_congr' fun a ↦ forall_congr' fun b ↦ forall_congr' fun w ↦
    forall_congr' fun hu ↦ ?_
  obtain ⟨p₁, p₂, -, h₂, -⟩ := Reads.cut (readByte_eq_none rfl) (hu ▸ hp)
  obtain ⟨x, -, hx, -⟩ := h₂.of_mark
  exact readByte_eq_percentByte_iff hx

/-! ### The URI and its front -/

theorem ne_mark (hu : '?'.toUInt8 ∉ u) : ∀ c ∈ u, decide (c ≠ '?'.toUInt8) = true :=
  fun _ hc ↦ decide_eq_true fun heq ↦ hu (heq ▸ hc)

variable {r : Bytes}

theorem front_append (hu : '?'.toUInt8 ∉ u) : front (u ++ r) = u ++ front r :=
  takeWhile_append_of_pos (ne_mark hu)

theorem front_eq_self (hu : '?'.toUInt8 ∉ u) : front u = u :=
  takeWhile_eq_self_iff.2 (ne_mark hu)

theorem front_append_mark (hu : '?'.toUInt8 ∉ u) : front (u ++ '?'.toUInt8 :: r) = u := by
  rw [front_append hu]
  exact append_nil u

theorem behind_append (hu : '?'.toUInt8 ∉ u) : behind (u ++ r) = behind r := by
  rw [behind, dropWhile_append_of_pos (ne_mark hu)]
  rfl

/-- How the path that is read and the front of the URI are related: they are the same, or a question
mark was walked through, or an escaped one ends the path. -/
theorem Target.cases {uri path : Bytes} {query : Option Bytes} (h : Target uri path query) :
    (Walk (front uri) path ∧ query.getD [] = behind uri ∧
      ('?'.toUInt8 ∈ uri → after path ≠ .dotDot)) ∨
    (∃ p, Walk (front uri) p ∧ '?'.toUInt8 ∈ uri ∧ after p = .dotDot ∧ p.length < path.length) ∨
    ∃ u a b r, Walk u path ∧ front uri = u ++ '%'.toUInt8 :: a :: b :: r ∧
      readByte a b = some '?'.toUInt8 ∧ after path ≠ .dotDot := by
  obtain ⟨u, hwalk, hend⟩ := h
  by_cases hu : '?'.toUInt8 ∈ u
  · obtain ⟨u₁, p₁, u₂, rfl, hnot, hwalk₁, hafter, hlt⟩ := hwalk.exists_first hu
    obtain ⟨r, rfl⟩ : ∃ r, uri = u₁ ++ '?'.toUInt8 :: r := by
      rcases hend with ⟨rfl, -⟩ | ⟨m, r, rfl, -⟩
      · exact ⟨u₂, rfl⟩
      · exact ⟨u₂ ++ m ++ r, by simp⟩
    refine .inr (.inl ⟨p₁, ?_, mem_append_right _ mem_cons_self, hafter, hlt⟩)
    rwa [front_append_mark hnot]
  · rcases hend with ⟨rfl, rfl⟩ | ⟨m, r, rfl, hm, hafter, hquery⟩
    · refine .inl ⟨by rwa [front_eq_self hu], ?_, fun hmem ↦ absurd hmem hu⟩
      have hnil := behind_append (r := []) hu
      rw [append_nil] at hnil
      exact hnil.symm
    · cases hm with
      | letter =>
        rw [append_assoc]
        refine .inl ⟨?_, ?_, fun _ ↦ hafter⟩
        · rwa [singleton_append, front_append_mark hu]
        · rw [behind_append hu]
          exact hquery
      | @escape a b hread =>
        refine .inr (.inr ⟨u, a, b, front r, hwalk, ?_, hread, hafter⟩)
        have hnot : '?'.toUInt8 ∉ u ++ ['%'.toUInt8, a, b] := by
          rw [mem_append]
          exact not_or.2 ⟨hu, mark_not_mem hread⟩
        rw [front_append hnot]
        exact append_assoc u _ _

/-! ### Decoding -/

/-- The path and the query are those of the URI, and no URI with a bad escape before the query is
accepted. -/
def Decoded (uri : Bytes) : Prop :=
  ((setUri {} uri).1 = true → percentDecode (front uri) = some (setUri {} uri).2.path ∧
    (setUri {} uri).2.query = behind uri) ∧
  (percentDecode (front uri) = none → (setUri {} uri).1 = false)

/-- In what stands before the first question mark, no escape begins with a letter, an escaped
question mark comes after `/..` only, and the first question mark does not come after `/..`. -/
structure Faithful (uri : Bytes) : Prop where
  digits : ∀ u a b v, front uri = u ++ '%'.toUInt8 :: a :: b :: v →
    '0'.toUInt8 ≤ a ∧ a ≤ '9'.toUInt8
  marks : ∀ u a b v, front uri = u ++ '%'.toUInt8 :: a :: b :: v →
    percentByte a b = some '?'.toUInt8 → ∃ p, percentDecode u = some p ∧
      ['/'.toUInt8, '.'.toUInt8, '.'.toUInt8] <:+ p
  climbs : '?'.toUInt8 ∈ uri → ∀ p, percentDecode (front uri) = some p →
    ¬['/'.toUInt8, '.'.toUInt8, '.'.toUInt8] <:+ p

theorem percentByte_mark_iff (a b : UInt8) :
    percentByte a b = some '?'.toUInt8 ↔ readByte a b = some '?'.toUInt8 := by
  have hspecial : ∀ o : Option UInt8, o = some '?'.toUInt8 ↔
      o.map special = some (some '?'.toUInt8) := by
    intro o
    constructor
    · rintro rfl
      rfl
    · intro ho
      obtain ⟨c, rfl, hc⟩ := map_eq_some_iff.1 ho
      obtain ⟨-, hc⟩ := ite_none_right_eq_some.1 hc
      exact hc
  rw [hspecial, hspecial (readByte a b), special_readByte]

theorem percentDecode_of_digits (h : Reads '%'.toUInt8 readByte u p) (hdigits : Numeric u) :
    percentDecode u = some p := by
  obtain ⟨q, hq, -⟩ := exists_percent h
  rw [(reads_eq_iff h hq).2 hdigits]
  exact unescape_eq_some_iff.2 hq

theorem Walk.digits (h : Walk u p) (hdecode : percentDecode u = some p) : Numeric u :=
  (reads_eq_iff h.reads (unescape_eq_some_iff.1 hdecode)).1 rfl

theorem Target.faithful_iff {uri path : Bytes} {query : Option Bytes} (h : Target uri path query) :
    percentDecode (front uri) = some path ∧ query.getD [] = behind uri ↔ Faithful uri := by
  rcases h.cases with ⟨hwalk, hquery, hmark⟩ | ⟨p, hwalk, hmem, hafter, hlt⟩ |
    ⟨u, a, b, r, hwalk, hfront, hread, hafter⟩
  · constructor
    · rintro ⟨hdecode, -⟩
      have hdigits := hwalk.digits hdecode
      refine ⟨hdigits, fun u a b v hu hbyte ↦ ?_, fun hmem p hp ↦ ?_⟩
      · obtain ⟨q, hq, hafter⟩ := hwalk.of_escape hu ((percentByte_mark_iff a b).1 hbyte)
        refine ⟨q, percentDecode_of_digits hq.reads fun v' a' b' w hv' ↦ ?_,
          (after_eq_iff q).2.2.1 hafter⟩
        exact hdigits v' a' b' (w ++ '%'.toUInt8 :: a :: b :: v) (by rw [hu, hv']; simp)
      · obtain rfl := some.inj (hdecode.symm.trans hp)
        exact fun hsuffix ↦ hmark hmem ((after_eq_iff path).2.2.2 hsuffix)
    · exact fun hfaithful ↦ ⟨percentDecode_of_digits hwalk.reads hfaithful.digits, hquery⟩
  · -- a question mark after `/..` is in the path, so that the path is too long
    constructor
    · rintro ⟨hdecode, -⟩
      have hlen := hwalk.reads.length_eq (unescape_eq_some_iff.1 hdecode)
      omega
    · intro hfaithful
      have hdecode := percentDecode_of_digits hwalk.reads hfaithful.digits
      exact absurd ((after_eq_iff p).2.2.1 hafter) (hfaithful.climbs hmem p hdecode)
  · -- an escaped question mark ends the path, so that it is too short
    constructor
    · rintro ⟨hdecode, -⟩
      rw [hfront] at hdecode
      obtain ⟨p₁, p₂, h₁, h₂, heq⟩ :=
        (unescape_eq_some_iff.1 hdecode).cut (percentByte_eq_none rfl)
      obtain ⟨x, q, -, -, rfl⟩ := h₂.of_mark
      have hlen := congrArg length heq
      rw [length_append, length_cons, ← hwalk.reads.length_eq h₁] at hlen
      omega
    · intro hfaithful
      obtain ⟨p, hp, hsuffix⟩ := hfaithful.marks u a b r hfront ((percentByte_mark_iff a b).2 hread)
      have hdecode := percentDecode_of_digits hwalk.reads fun v a' b' w hv ↦
        hfaithful.digits v a' b' (w ++ '%'.toUInt8 :: a :: b :: r) (by rw [hfront, hv]; simp)
      obtain rfl := some.inj (hdecode.symm.trans hp)
      exact absurd ((after_eq_iff path).2.2.2 hsuffix) hafter

/-- **Decoding.** The path and the query of an accepted URI are the ones it denotes, and no bad
escape is accepted, exactly if no escape in the path begins with a letter, an escaped question mark
comes after `/..` only, and the first question mark does not. -/
theorem decoded_iff {uri : Bytes} (huri : uri ≠ ['*'.toUInt8]) :
    Decoded uri ↔ ((setUri {} uri).1 = true → Faithful uri) := by
  by_cases haccept : (setUri {} uri).1 = true
  · obtain ⟨s, query, -, -, htarget, hpath, hquery⟩ := exists_walk huri haccept
    rw [Decoded, hpath, hquery, htarget.faithful_iff]
    refine ⟨fun h hok ↦ h.1 hok, fun h ↦ ⟨h, fun hnone ↦ ?_⟩⟩
    rw [(htarget.faithful_iff.2 (h haccept)).1] at hnone
    cases hnone
  · rw [Bool.not_eq_true] at haccept
    rw [Decoded, haccept]
    exact ⟨fun _ ↦ nofun, fun _ ↦ ⟨nofun, fun _ ↦ rfl⟩⟩

theorem decoded_slash : Decoded ['/'.toUInt8, 'a'.toUInt8, '?'.toUInt8, 'b'.toUInt8] := by
  have hshort : ∀ (u : Bytes) (a b : UInt8) (v : Bytes),
      front ['/'.toUInt8, 'a'.toUInt8, '?'.toUInt8, 'b'.toUInt8] ≠
        u ++ '%'.toUInt8 :: a :: b :: v := by
    intro u a b v heq
    have hlen := congrArg length heq
    rw [length_append] at hlen
    change 2 = u.length + (v.length + 3) at hlen
    omega
  refine (decoded_iff (by decide)).2 fun _ ↦ ⟨fun u a b v heq ↦ absurd heq (hshort u a b v),
    fun u a b v heq ↦ absurd heq (hshort u a b v), fun _ p hp ↦ ?_⟩
  obtain rfl : ['/'.toUInt8, 'a'.toUInt8] = p := some.inj hp
  decide

theorem not_decoded : ¬∀ uri, uri ≠ ['*'.toUInt8] → Decoded uri := by
  intro hall
  have h := (hall ['/'.toUInt8, '%'.toUInt8, 'A'.toUInt8, '1'.toUInt8] (by decide)).1
  exact absurd (h rfl).1 (by decide)

end Xzero.Http
