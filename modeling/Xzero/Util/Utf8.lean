import Xzero.Library.Bits
import Xzero.Util.Buffer

/-!
# UTF-8

`xzero/UTF8.cc`. The decoder and the validator tell the length of a sequence by its first byte in
the same way, but the validator returns at the first byte below 128, and goes round in circles at a
byte that begins no sequence. **It agrees with the decoder if and only if neither matters**
(`validates_iff`).

What is encoded is decoded again up to 24 bits. Of five bytes the decoder shifts the first one by
too little, and of six the encoder shifts the fourth one by too little (`decodes_encode_iff`).
-/

namespace Xzero.Util.Utf8

open List

/-- The length of a sequence by its first byte, as both functions test it. -/
def width (b : UInt8) : Option ℕ :=
  if b < 0x80 then some 1
  else if b &&& 0xe0 = 0xc0 then some 2
  else if b &&& 0xf0 = 0xe0 then some 3
  else if b &&& 0xf8 = 0xf0 then some 4
  else if b &&& 0xfc = 0xf8 then some 5
  else if b &&& 0xfe = 0xfc then some 6
  else none

/-- The code point of a sequence of a length, from its first byte and the bits of the others. -/
def codepoint (b : UInt8) (c : ℕ → ℕ) : ℕ → ℕ
  | 2 => (b &&& 0x1f).toNat <<< 6 ||| c 0
  | 3 => (b &&& 0x0f).toNat <<< 12 ||| c 0 <<< 6 ||| c 1
  | 4 => (b &&& 0x07).toNat <<< 18 ||| c 0 <<< 12 ||| c 1 <<< 6 ||| c 2
  | 5 => (b &&& 0x03).toNat <<< 14 ||| c 0 <<< 18 ||| c 1 <<< 12 ||| c 2 <<< 6 ||| c 3
  | 6 => (b &&& 0x01).toNat <<< 30 ||| c 0 <<< 24 ||| c 1 <<< 18 ||| c 2 <<< 12 ||| c 3 <<< 6 ||| c 4
  | _ => b.toNat

/-- `nextCodepoint`: the code point and what is left, or an error. -/
def nextCodepoint : Bytes → Option (ℕ × Bytes)
  | [] => some (0, [])
  | b :: text => (width b).bind fun n ↦
    if text.length + 1 < n then none
    else some (codepoint b (fun i ↦ (text.getD i 0 &&& 0x3f).toNat) n, text.drop (n - 1))

/-- Calls of `nextCodepoint` up to the end of the text. -/
inductive Decodes : Bytes → List ℕ → Prop
  | nil : Decodes [] []
  | cons {b : UInt8} {text rest : Bytes} {c : ℕ} {cs : List ℕ} :
      nextCodepoint (b :: text) = some (c, rest) → Decodes rest cs → Decodes (b :: text) (c :: cs)

/-- The loop of `isValidUTF8`, for a number of rounds. -/
def isValidLoop : ℕ → Bytes → Option Bool
  | 0, _ => none
  | _ + 1, [] => some true
  | rounds + 1, b :: text =>
    match width b with
    | some n =>
      if n = 1 then some true
      else if text.length + 1 < n then some false
      else isValidLoop rounds (text.drop (n - 1))
    | none => isValidLoop rounds (b :: text)

/-- `isValidUTF8` returns. -/
def Returns (text : Bytes) (valid : Bool) : Prop := ∃ rounds, isValidLoop rounds text = some valid

/-- The validator returns, and what it returns is whether the text can be decoded. -/
def Validates (text : Bytes) : Prop :=
  ∃ valid, Returns text valid ∧ (valid = true ↔ ∃ cs, Decodes text cs)

/-- Complete sequences of more than one byte lead from one place of the text to another. -/
inductive Skips : Bytes → Bytes → Prop
  | refl (text : Bytes) : Skips text text
  | step {b : UInt8} {text text' : Bytes} {n : ℕ} : width b = some n → n ≠ 1 →
      ¬text.length + 1 < n → Skips (text.drop (n - 1)) text' → Skips (b :: text) text'

theorem not_returns {b : UInt8} {text : Bytes} {valid : Bool} (hw : width b = none) :
    ¬Returns (b :: text) valid := by
  rintro ⟨rounds, h⟩
  induction rounds with
  | zero => cases h
  | succ rounds ih => exact ih (by rwa [isValidLoop, hw] at h)

section

variable {b : UInt8} {text : Bytes} {n : ℕ} (hw : width b = some n)
include hw

theorem exists_decodes_iff : (∃ cs, Decodes (b :: text) cs) ↔
    ¬text.length + 1 < n ∧ ∃ cs, Decodes (text.drop (n - 1)) cs := by
  constructor
  · rintro ⟨_, hcs⟩
    cases hcs with
    | cons hnext hrest =>
      rw [nextCodepoint, hw, Option.bind_some, Option.ite_none_left_eq_some] at hnext
      obtain ⟨hlen, hnext⟩ := hnext
      cases hnext
      exact ⟨hlen, _, hrest⟩
  · rintro ⟨hlen, cs, hcs⟩
    exact ⟨_, .cons (by rw [nextCodepoint, hw, Option.bind_some, if_neg hlen]) hcs⟩

theorem returns_iff {valid : Bool} : Returns (b :: text) valid ↔ if n = 1 then valid = true
    else if text.length + 1 < n then valid = false else Returns (text.drop (n - 1)) valid := by
  rw [Returns, ← Nat.or_exists_add_one]
  simp only [isValidLoop, hw]
  split_ifs <;> simp [Returns, eq_comm]

theorem skips_iff {text' : Bytes} : Skips (b :: text) text' ↔ text' = b :: text ∨
    n ≠ 1 ∧ ¬text.length + 1 < n ∧ Skips (text.drop (n - 1)) text' := by
  constructor
  · rintro (- | ⟨hw', hone, hlong, h⟩)
    · exact .inl rfl
    · cases hw.symm.trans hw'
      exact .inr ⟨hone, hlong, h⟩
  · rintro (rfl | ⟨hone, hlong, h⟩)
    · exact .refl _
    · exact .step hw hone hlong h

end

/-- **The validator agrees with the decoder if and only if** the sequences of more than one byte
that the text begins with are followed by nothing, by one that is cut off, or by a byte below 128
and text that can be decoded. -/
theorem validates_iff (text : Bytes) : Validates text ↔ ∀ b text', Skips text (b :: text') →
    width b ≠ none ∧ (width b = some 1 → ∃ cs, Decodes text' cs) := by
  induction hlen : text.length using Nat.strongRecOn generalizing text with
  | ind len ih =>
    rcases text with - | ⟨b, text⟩
    · refine iff_of_true ⟨true, ⟨1, rfl⟩, iff_of_true rfl ⟨[], .nil⟩⟩ fun b text' h ↦ ?_
      cases h
    rcases hw : width b with - | n
    · -- The loop does not get past the byte.
      refine iff_of_false ?_ fun h ↦ (h b text (.refl _)).1 hw
      rintro ⟨valid, hvalid, -⟩
      exact not_returns hw hvalid
    simp only [Validates, returns_iff hw, exists_decodes_iff hw, skips_iff hw]
    split_ifs with hone hshort
    · subst hone
      simp [hw]
    · simp [hone, hshort, hw]
    · simp only [hshort, not_false_eq_true, true_and, ne_eq, hone]
      refine (ih _ (by grind) (text.drop (n - 1)) rfl).trans ⟨?_, fun h b' text' hs ↦ h _ _ (.inr hs)⟩
      rintro h b' text' (heq | hs)
      · cases heq
        simp [hw, hone]
      · exact h b' text' hs

/-- The validator does not return when a text begins with a byte of the middle of a sequence. -/
theorem not_validates : ¬∀ text, Validates text := by
  intro h
  obtain ⟨valid, hvalid, -⟩ := h [0x80]
  exact not_returns rfl hvalid

/-! ### Round trips -/

/-- A byte of a sequence: its mark, and the bits of the code point that it carries. -/
def byte (mark mask shift c : ℕ) : UInt8 := .ofNat (mark ||| c >>> shift &&& mask)

/-- `encodeCodepoint`. The fourth byte of six begins at the wrong bit. -/
def encodeCodepoint (c : ℕ) : Bytes :=
  if c < 0x80 then [.ofNat c]
  else if c < 0x800 then [byte 0xc0 0x1f 6 c, byte 0x80 0x3f 0 c]
  else if c < 0x10000 then [byte 0xe0 0x0f 12 c, byte 0x80 0x3f 6 c, byte 0x80 0x3f 0 c]
  else if c < 0x200000 then
    [byte 0xf0 0x07 18 c, byte 0x80 0x3f 12 c, byte 0x80 0x3f 6 c, byte 0x80 0x3f 0 c]
  else if c < 0x4000000 then
    [byte 0xf8 0x03 24 c, byte 0x80 0x3f 18 c, byte 0x80 0x3f 12 c, byte 0x80 0x3f 6 c,
      byte 0x80 0x3f 0 c]
  else
    [byte 0xfc 0x01 30 c, byte 0x80 0x3f 24 c, byte 0x80 0x3f 18 c, byte 0x80 0x3f 11 c,
      byte 0x80 0x3f 6 c, byte 0x80 0x3f 0 c]

theorem byte_spec (n : Option ℕ) (mark mask : ℕ) {k : ℕ} (hmask : mask = 2 ^ k - 1)
    (h : ∀ x < 2 ^ k, width (.ofNat (mark ||| x)) = n ∧ (UInt8.ofNat (mark ||| x)).toNat &&& mask = x)
    (shift c : ℕ) : width (byte mark mask shift c) = n ∧
      (byte mark mask shift c).toNat &&& mask = c / 2 ^ shift % 2 ^ k := by
  subst hmask
  rw [byte, Nat.and_two_pow_sub_one_eq_mod, Nat.shiftRight_eq_div_pow]
  exact h _ (Nat.mod_lt _ (Nat.two_pow_pos k))

/-- The code points that both functions take apart and put together in the same way. -/
def Kept (c : ℕ) : Prop := c < 2 ^ 24 ∨ 2 ^ 26 ≤ c ∧ c / 2 ^ 11 % 2 ^ 6 = c / 2 ^ 12 % 2 ^ 6

theorem nextCodepoint_encode {c : ℕ} (hc : c < 2 ^ 31) (rest : Bytes) :
    ∃ d, nextCodepoint (encodeCodepoint c ++ rest) = some (d, rest) ∧ (d = c ↔ Kept c) := by
  have htail := byte_spec none 0x80 0x3f (k := 6) rfl (by decide)
  have h₂ := byte_spec (some 2) 0xc0 0x1f (k := 5) rfl (by decide)
  have h₃ := byte_spec (some 3) 0xe0 0x0f (k := 4) rfl (by decide)
  have h₄ := byte_spec (some 4) 0xf0 0x07 (k := 3) rfl (by decide)
  have h₅ := byte_spec (some 5) 0xf8 0x03 (k := 2) rfl (by decide)
  have h₆ := byte_spec (some 6) 0xfc 0x01 (k := 1) rfl (by decide)
  unfold encodeCodepoint
  split_ifs
  · have h₁ : ∀ x < 0x80, width (.ofNat x) = some 1 := by decide
    simp (disch := omega) [nextCodepoint, codepoint, h₁, Kept, Nat.mod_eq_of_lt]
    omega
  all_goals
    simp [nextCodepoint, codepoint, htail, h₂, h₃, h₄, h₅, h₆, Nat.or_assoc, Kept]
    simp (disch := omega) only [Nat.shiftLeft_or_eq_add]
  · omega
  · omega
  · omega
  · -- The bits of the first byte belong above the others, and are put among them.
    rcases lt_or_ge c 0x1000000 with hlt | hge
    · rw [Nat.div_eq_of_lt hlt, Nat.zero_mod, Nat.zero_shiftLeft, Nat.zero_or]
      omega
    · refine iff_of_false (ne_of_lt (lt_of_lt_of_le ?_ hge)) (by omega)
      show _ < 2 ^ 24
      refine Nat.or_lt_two_pow ?_ ?_ <;> omega
  · have hsum : c = c / 0x40000000 % 2 * 2 ^ 30 + (c / 0x1000000 % 64 * 2 ^ 24 +
        (c / 0x40000 % 64 * 2 ^ 18 + (c / 0x1000 % 64 * 2 ^ 12 + (c / 64 % 64 * 2 ^ 6 + c % 64)))) := by
      omega
    omega

/-- **The code points come back if and only if** none of them is encoded in five bytes and more than
24 bits, or in six of which the fourth is not the right one. -/
theorem decodes_encode_iff (cs : List ℕ) (h : ∀ c ∈ cs, c < 2 ^ 31) :
    Decodes (cs.flatMap encodeCodepoint) cs ↔ ∀ c ∈ cs, Kept c := by
  induction cs with
  | nil => simp [Decodes.nil]
  | cons c cs ih =>
    obtain ⟨hc, hcs⟩ := forall_mem_cons.1 h
    obtain ⟨d, hnext, hd⟩ := nextCodepoint_encode hc (cs.flatMap encodeCodepoint)
    rw [forall_mem_cons, ← ih hcs, ← hd, flatMap_cons]
    rcases htext : encodeCodepoint c ++ cs.flatMap encodeCodepoint with - | ⟨b, text⟩
    · have hne : encodeCodepoint c ≠ [] := by
        unfold encodeCodepoint
        split_ifs <;> exact cons_ne_nil _ _
      exact absurd (append_eq_nil_iff.1 htext).1 hne
    rw [htext] at hnext
    constructor
    · rintro (- | ⟨hnext', hrest⟩)
      cases hnext.symm.trans hnext'
      exact ⟨rfl, hrest⟩
    · rintro ⟨rfl, hrest⟩
      exact .cons hnext hrest

theorem decodes_encode_euro : Decodes ([0x20ac].flatMap encodeCodepoint) [0x20ac] :=
  (decodes_encode_iff _ (by decide)).2 (by simp [Kept])

/-- The code point 2 ^ 24 is encoded in five bytes, which are decoded to 2 ^ 14. -/
theorem not_decodes_encode :
    ¬∀ cs : List ℕ, (∀ c ∈ cs, c < 2 ^ 31) → Decodes (cs.flatMap encodeCodepoint) cs := by
  intro h
  rcases h [2 ^ 24] (by decide) with - | ⟨hnext, -⟩
  obtain ⟨d, hd, hkept⟩ := nextCodepoint_encode (c := 2 ^ 24) (by decide) []
  cases hd.symm.trans hnext
  exact absurd (hkept.1 rfl) (by simp [Kept])

end Xzero.Util.Utf8
