import Mathlib.Data.BitVec

/-!
# Byte strings

The read-only operations of `xzero/Buffer.h`, `xzero/BufferUtil.cc` and `xzero/StringUtil.cc` that
the Flow language rests on, on the bytes a buffer holds.

`BufferRef` has no relational operators, but it converts to `bool`, whether it has any bytes; so
`a <= b` and its siblings on two references compare these (`lessOrEqual`, …), while `std::string`
compares bytes.
-/

namespace Xzero.Util

open List Option UInt8

/-- The bytes of a string or of a buffer. -/
abbrev Bytes := List UInt8

def ofString (text : String) : Bytes := text.toList.map Char.toUInt8

theorem forall_uint8 {P : UInt8 → Prop} (h : ∀ n : Fin 256, P (ofFin n)) (c : UInt8) : P c :=
  h c.toFin

namespace Buffer

def equals (a b : Bytes) : Bool := a == b

/-- `tolower`, of one byte. -/
def toLower (b : UInt8) : UInt8 := if 65 ≤ b ∧ b ≤ 90 then b + 32 else b

/-- `iequals(a, b)`, where one of them has no null byte. -/
def iequals (a b : Bytes) : Bool := a.length = b.length && a.map toLower == b.map toLower

theorem iequals_iff {a b : Bytes} : iequals a b = true ↔ a.map toLower = b.map toLower := by
  rw [iequals, Bool.and_eq_true, decide_eq_true_iff, beq_iff_eq]
  refine ⟨And.right, fun h ↦ ⟨?_, h⟩⟩
  rw [← length_map toLower, h, length_map]

/-- `operator bool`: the buffer is not empty. -/
def toBool (a : Bytes) : Bool := !a.isEmpty

/-- `a <= b` on two `BufferRef`s. -/
def lessOrEqual (a b : Bytes) : Bool := decide ((toBool a).toNat ≤ (toBool b).toNat)

/-- `a >= b` on two `BufferRef`s. -/
def greaterOrEqual (a b : Bytes) : Bool := decide ((toBool a).toNat ≥ (toBool b).toNat)

/-- `a < b` on two `BufferRef`s. -/
def less (a b : Bytes) : Bool := decide ((toBool a).toNat < (toBool b).toNat)

/-- `a > b` on two `BufferRef`s. -/
def greater (a b : Bytes) : Bool := decide ((toBool a).toNat > (toBool b).toNat)

def beginsWith (data start : Bytes) : Bool :=
  if data.length < start.length then false else equals (data.take start.length) start

def endsWith (data tail : Bytes) : Bool :=
  if data.length < tail.length then false
  else equals (data.drop (data.length - tail.length)) tail

/-- The loop of `find`: the first position at which the pattern's bytes follow. What lies behind the
buffer's end does not match. -/
def findFrom (value : Bytes) (i : ℕ) : Bytes → Option ℕ
  | [] => none
  | b :: rest => if value.isPrefixOf (b :: rest) then some i else findFrom value (i + 1) rest

/-- `find(const BufferRef&)` from the start; `none` is `npos`. An empty pattern runs past the end
mark of the comparison and is never found. -/
def find (data value : Bytes) : Option ℕ :=
  if value.isEmpty || data.length < value.length then none else findFrom value 0 data

/-! ### What the searches find -/

theorem equals_eq (a b : Bytes) : equals a b = decide (a = b) := by
  rw [equals, Bool.eq_iff_iff, beq_iff_eq, decide_eq_true_iff]

/-- **`beginsWith` tests for a prefix.** -/
theorem beginsWith_eq (data start : Bytes) : beginsWith data start = decide (start <+: data) := by
  rw [beginsWith, Bool.eq_iff_iff, decide_eq_true_iff, prefix_iff_eq_take]
  split
  · rename_i hlt
    refine ⟨fun h ↦ (Bool.false_ne_true h).elim, fun h ↦ ?_⟩
    have hlen := congrArg length h
    rw [length_take] at hlen
    omega
  · rw [equals_eq, decide_eq_true_iff]
    exact eq_comm

/-- **`endsWith` tests for a suffix.** -/
theorem endsWith_eq (data tail : Bytes) : endsWith data tail = decide (tail <:+ data) := by
  rw [endsWith, Bool.eq_iff_iff, decide_eq_true_iff, suffix_iff_eq_drop]
  split
  · rename_i hlt
    refine ⟨fun h ↦ (Bool.false_ne_true h).elim, fun h ↦ ?_⟩
    have hlen := congrArg length h
    rw [length_drop] at hlen
    omega
  · rw [equals_eq, decide_eq_true_iff]
    exact eq_comm

theorem isSome_findFrom {value : Bytes} (hvalue : value ≠ []) (i : ℕ) (data : Bytes) :
    (findFrom value i data).isSome ↔ value <:+: data := by
  induction data generalizing i with
  | nil => simpa [findFrom] using hvalue
  | cons b rest ih =>
    rw [findFrom, infix_cons_iff]
    split
    · rename_i h
      exact ⟨fun _ ↦ .inl ( isPrefixOf_iff_prefix.1 h), fun _ ↦ rfl⟩
    · rename_i h
      rw [ih]
      refine ⟨.inr, fun h' ↦ h'.resolve_left fun hp ↦ h ( isPrefixOf_iff_prefix.2 hp)⟩

/-- **`find` finds every part but the empty one.** -/
theorem isSome_find (data value : Bytes) :
    (find data value).isSome = decide (value ≠ [] ∧ value <:+: data) := by
  rw [Bool.eq_iff_iff, decide_eq_true_iff, find]
  rcases eq_or_ne value [] with rfl | hvalue
  · simp
  · by_cases hlen : data.length < value.length
    · have hnot : ¬value <:+: data := fun h ↦ by
        have := h.length_le
        omega
      simp [hlen, hnot]
    · have hempty : value.isEmpty = false := by simpa using hvalue
      simp [hempty, hlen, hvalue, isSome_findFrom hvalue]

/-! ### Numbers -/

/-- The digits of `toInt`, accumulated in an `int`. -/
def toIntLoop (val : BitVec 32) : Bytes → BitVec 32
  | [] => val
  | b :: rest =>
    if b < 48 ∨ 57 < b then val
    else toIntLoop (val * 10 + BitVec.ofNat 32 (b.toNat - 48)) rest

/-- `toInt()`: an optional sign, then digits up to the first other byte. -/
def toInt : Bytes → BitVec 32
  | 45 :: rest => -toIntLoop 0 rest
  | 43 :: rest => toIntLoop 0 rest
  | data => toIntLoop 0 data

end Buffer

namespace StringUtil

/-- `StringUtil::beginsWith`; `compare` of the substring with the whole pattern. -/
def beginsWith (str start : Bytes) : Bool :=
  if str.length < start.length then false else str.take start.length == start

def endsWith (str tail : Bytes) : Bool :=
  if str.length < tail.length then false else str.drop (str.length - tail.length) == tail

/-- `"%" PRIi64`. -/
def decimal (n : ℤ) : Bytes :=
  (if n < 0 then [45] else []) ++ (Nat.toDigits 10 n.natAbs).map fun c ↦ ofNat c.toNat

variable {n : ℤ}

theorem minus_notMem_decimal (hn : 0 ≤ n) : (45 : UInt8) ∉ decimal n := by
  rw [decimal, if_neg (by omega), nil_append, List.mem_map]
  rintro ⟨c, hc, hminus⟩
  have hdigit := Nat.isDigit_of_mem_toDigits (by decide) (by decide) hc
  rw [Char.isDigit, Bool.and_eq_true, decide_eq_true_iff, decide_eq_true_iff] at hdigit
  have hge : 48 ≤ c.toNat := UInt32.le_iff_toNat_le.1 hdigit.1
  have hle : c.toNat ≤ 57 := UInt32.le_iff_toNat_le.1 hdigit.2
  have hnat : c.toNat % 2 ^ 8 = 45 := toNat_ofNat'.symm.trans (congrArg toNat hminus)
  omega

/-- White space as `isspace` has it in the C locale. -/
def isSpace (b : UInt8) : Bool := b == 32 || (9 ≤ b && b ≤ 13)

/-- The value of the digits at the front, and whether there are any. -/
def digits (value : ℕ) (any : Bool) : Bytes → Option ℕ
  | [] => if any then some value else none
  | b :: rest =>
    if 48 ≤ b ∧ b ≤ 57 then digits (value * 10 + (b.toNat - 48)) true rest
    else if any then some value else none

/-- The number that starts with an optional sign. -/
def signedDigits : Bytes → Option ℤ
  | 45 :: rest => (digits 0 false rest).map fun n : ℕ ↦ -(n : ℤ)
  | 43 :: rest => (digits 0 false rest).map fun n : ℕ ↦ (n : ℤ)
  | rest => (digits 0 false rest).map fun n : ℕ ↦ (n : ℤ)

/-- `std::stoi`: white space, an optional sign and digits. `none` stands for the exceptions it
throws: there is no number, or it is outside of `int`. -/
def stoi (str : Bytes) : Option ℤ :=
  signedDigits (str.dropWhile isSpace) >>= fun value ↦
    if -2 ^ 31 ≤ value ∧ value < 2 ^ 31 then some value else none

/-! ### Two ways to read a number -/

variable {str : Bytes}

theorem digits_toIntLoop {value n : ℕ} {any : Bool} (h : digits value any str = some n) :
    Buffer.toIntLoop (BitVec.ofNat 32 value) str = BitVec.ofNat 32 n := by
  induction str generalizing value any with
  | nil =>
    rw [digits] at h
    split at h
    · rw [Buffer.toIntLoop, some.inj h]
    · cases h
  | cons b rest ih =>
    rw [digits] at h
    rw [Buffer.toIntLoop]
    by_cases hb : 48 ≤ b ∧ b ≤ 57
    · rw [if_pos hb] at h
      have hnot : ¬(b < 48 ∨ 57 < b) := by
        rw [not_or, UInt8.not_lt, UInt8.not_lt]
        exact hb
      rw [if_neg hnot, ← ih h, BitVec.ofNat_add, BitVec.ofNat_mul]
      rfl
    · rw [if_neg hb] at h
      have hor : b < 48 ∨ 57 < b := by
        rwa [not_and_or, UInt8.not_le, UInt8.not_le] at hb
      rw [if_pos hor]
      split at h
      · rw [some.inj h]
      · cases h

theorem toInt_of_signedDigits (h : signedDigits str = some n) :
    Buffer.toInt str = BitVec.ofInt 32 n := by
  unfold signedDigits at h
  split at h
  · obtain ⟨m, hm, rfl⟩ := map_eq_some_iff.1 h
    rw [Buffer.toInt, BitVec.ofInt_neg, BitVec.ofInt_natCast, ← digits_toIntLoop hm]
    rfl
  · obtain ⟨m, hm, rfl⟩ := map_eq_some_iff.1 h
    rw [Buffer.toInt, BitVec.ofInt_natCast, ← digits_toIntLoop hm]
    rfl
  · obtain ⟨m, hm, rfl⟩ := map_eq_some_iff.1 h
    rw [Buffer.toInt, BitVec.ofInt_natCast, ← digits_toIntLoop hm]
    · rfl
    · assumption
    · assumption

theorem toInt_space {b : UInt8} {rest : Bytes} (hb : isSpace b) : Buffer.toInt (b :: rest) = 0 := by
  have hlt : b < 48 := by
    simp only [isSpace, Bool.or_eq_true, beq_iff_eq, Bool.and_eq_true, decide_eq_true_iff] at hb
    rcases hb with rfl | ⟨-, hle⟩
    · decide
    · exact UInt8.lt_of_le_of_lt hle (by decide)
  have hloop : Buffer.toIntLoop 0 (b :: rest) = 0 := by
    rw [Buffer.toIntLoop, if_pos (.inl hlt)]
  unfold Buffer.toInt
  split
  · rename_i heq
    cases heq
    exact absurd hb (by decide)
  · rename_i heq
    cases heq
    exact absurd hb (by decide)
  · exact hloop

theorem stoi_eq_some_iff : stoi str = some n ↔
    signedDigits (str.dropWhile isSpace) = some n ∧ -2 ^ 31 ≤ n ∧ n < 2 ^ 31 := by
  rw [stoi, bind_eq_bind, bind_eq_some_iff]
  constructor
  · rintro ⟨m, hm, h⟩
    split at h
    · obtain rfl := some.inj h
      exact ⟨hm, ‹_›⟩
    · cases h
  · rintro ⟨hm, h⟩
    exact ⟨n, hm, if_pos h⟩

/-- **`toInt` and `stoi` agree on a number without white space before it, and on zero.** -/
theorem toInt_eq_iff (h : stoi str = some n) :
    (Buffer.toInt str).toInt = n ↔ n = 0 ∨ str.head?.all fun b ↦ !isSpace b := by
  obtain ⟨hdigits, hge, hlt⟩ := stoi_eq_some_iff.1 h
  rcases str with - | ⟨b, rest⟩
  · cases hdigits
  · by_cases hb : isSpace b
    · rw [toInt_space hb]
      simp [hb, eq_comm]
    · rw [dropWhile_cons_of_neg hb] at hdigits
      refine iff_of_true ?_ (.inr (by simpa using hb))
      rw [toInt_of_signedDigits hdigits, BitVec.toInt_ofInt]
      exact Int.bmod_eq_of_le (by omega) (by omega)

end StringUtil

end Xzero.Util
